import Aloelite.Forest
import Aloelite.Containment

/-! What a volume's root leads to, and whether a request that places a node places it there.
A mount is good for as long as its row is: nothing asks whether its anchor still hangs in the
volume. -/
namespace Aloelite

open Fallible KeyedRows ForestOrder Relation

variable {C : Crypto} {M : Msgpack} {E : Env} {k : Cipher} {L : License} {now : Int} {db db' : Db}
  {tx tx' : Tx} {mount : MountId} {path src dst : String} {a f n r : NodeId} {e : EdgeRow}

/-! ### Above a container -/

theorem Db.Forest.parent_unique (hf : db.Forest) {x y z : NodeId}
    (hz : db.nodeType? z = some .container) (hx : db.Child x z) (hy : db.Child y z) : x = y := by
  obtain ⟨e, he, rfl, hto⟩ := hx
  obtain ⟨e', he', rfl, hto'⟩ := hy
  have hmem : e ∈ db.activeEdges.filter (fun e => e.toId = z) :=
    List.mem_filter.mpr ⟨he, decide_eq_true hto⟩
  have hmem' : e' ∈ db.activeEdges.filter (fun e => e.toId = z) :=
    List.mem_filter.mpr ⟨he', decide_eq_true hto'⟩
  have hsame : e = e' := by
    have hlength := hf.single z hz
    generalize db.activeEdges.filter (fun e => e.toId = z) = es at hmem hmem' hlength
    match es with
    | [] => cases hmem
    | [e₀] => rw [List.mem_singleton.mp hmem, List.mem_singleton.mp hmem']
  rw [hsame]

/-- A root that leads to a container in the subtree of an anchor leads to the anchor. -/
theorem Db.Forest.above (hf : db.Forest) (hl : db.Linked)
    (hroot : ∃ v ∈ db.volumes, v.rootNodeId = some r) (hn : db.nodeType? n = some .container)
    (hr : db.Below r n) (ha : db.Below a n) :
    db.Below r a := by
  obtain ⟨v, hv, hvr⟩ := hroot
  have hinner : ∀ x y, db.Child x y → db.nodeType? x = some .container := by
    rintro x y ⟨e, he, rfl, -⟩
    exact hl.parent e (Db.mem_activeEdges.mp he).1
  have hsingle : ∀ x y z, db.nodeType? z = some .container → db.Child x z → db.Child y z → x = y :=
    fun x y z hz hx hy => hf.parent_unique hz hx hy
  rcases reach_comparable hinner hsingle hn hr ha with h | h
  · exact h
  · -- nothing is above a root but itself
    rcases ReflTransGen.cases_tail h with heq | ⟨y, -, e, he, -, hto⟩
    · rw [heq]
      exact ReflTransGen.refl
    · exact absurd hto (hf.rootFree v hv r hvr e he)

theorem node?_isSome_of_below (hl : db.Linked) (hr : (db.node? r).isSome) (h : db.Below r n) :
    (db.node? n).isSome := by
  rcases ReflTransGen.cases_tail h with heq | ⟨y, -, e, he, -, hto⟩
  · rw [heq]
    exact hr
  · rw [← hto]
    exact hl.child e (Db.mem_activeEdges.mp he).1

/-- The container of a path hangs under a root exactly when the anchor of the path does. -/
theorem below_container_iff (hf : db.Forest) (hl : db.Linked)
    (hroot : ∃ v ∈ db.volumes, v.rootNodeId = some r) {p : Parent}
    (hp : resolveParent db a path = .ok p) : db.Below r p.container ↔ db.Below r a := by
  constructor
  · intro h
    obtain ⟨-, -, names, hd⟩ := resolveParent_descends hp
    by_cases hnil : names = []
    · rw [hnil] at hd
      have heq : a = p.container := congrArg Resolved.node (Except.ok.inj hd)
      rw [heq]
      exact h
    · exact hf.above hl hroot (descend_node hd (Or.inr hnil)) h (resolveParent_below hp)
  · intro h
    exact h.trans (resolveParent_below hp)

/-! ### Planting -/

/-- The license to plant: new nodes under one container, and under each other. -/
def License.planting (db : Db) (f : NodeId) : License where
  host n := n = f ∨ db.node? n = none
  adopt := none
  detach _ := False
  write _ _ := False
  session := True

/-- What planting under `f` comes to: every placement stays, every new one is of a new node and
hangs below `f`. -/
structure Plants (f : NodeId) (db db' : Db) : Prop where
  kept : ∀ e ∈ db.activeEdges, e ∈ db'.activeEdges
  lasting : ∀ n, (db.node? n).isSome → (db'.node? n).isSome
  grown : ∀ e ∈ db'.activeEdges, e ∈ db.activeEdges ∨
    db.node? e.toId = none ∧ (e.fromId = f ∨ db.node? e.fromId = none) ∧ db'.Below f e.fromId
  born : ∀ n, (db'.node? n).isSome → (db.node? n).isSome ∨ db'.Below f n

theorem Plants.refl (f : NodeId) (db : Db) : Plants f db db :=
  ⟨fun _ he => he, fun _ hn => hn, fun _ he => Or.inl he, fun _ hn => Or.inl hn⟩

theorem below_mono (hkept : ∀ e ∈ db.activeEdges, e ∈ db'.activeEdges) (h : db.Below a n) :
    db'.Below a n := by
  refine ReflTransGen.mono ?_ a n h
  rintro x y ⟨e, he, hx, hy⟩
  exact ⟨e, hkept e he, hx, hy⟩

/-- Outside births, planting leaves the active placements alone. -/
theorem activeEdges_of_planting {db₀ : Db} {st : Stmt} (hst : (License.planting db₀ f).grants db st)
    (h : st.exec now db = .ok db') : db'.activeEdges = db.activeEdges := by
  have harchive : ∀ p : EdgeRow → Bool, (∀ e ∈ db.activeEdges, p e = true → False) →
      db' = db.archiveWhere now p →
      db'.activeEdges = db.activeEdges := by
    rintro p hp rfl
    rw [Db.activeEdges_archiveWhere, List.filter_eq_self]
    intro e he
    cases hpe : p e with
    | false => rfl
    | true => exact (hp e he hpe).elim
  by_cases ht : Table.edges ∈ st.touches
  · cases st with
    | createEdge id f t v n =>
      cases hst.1
    | archivePlacement parent n name => exact harchive _ hst (Except.ok.inj h).symm
    | archiveEdge id =>
      refine harchive _ ?_ (Except.ok.inj h).symm
      intro e he hid
      exact hst e he (of_decide_eq_true hid)
    | archiveSubtree root =>
      refine harchive _ ?_ (Except.ok.inj h).symm
      intro e he hid
      exact hst e he (of_decide_eq_true hid)
    | renamePlacement parent m old name =>
      obtain rfl := Except.ok.inj h
      rw [Db.activeEdges_renamePlacement]
      conv_rhs => rw [← List.map_id db.activeEdges]
      apply List.map_congr_left
      intro e he
      rw [if_neg (fun hplaced => hst e he hplaced)]
      rfl
    | _ => simp [Stmt.touches] at ht
  · rw [Db.activeEdges, (Stmt.exec_agreeOff h).edges ht]
    rfl

theorem Plants.stride {db₀ : Db} (hp : Plants f db₀ db)
    (h : Stride (License.planting db₀ f) now db db') : Plants f db₀ db' := by
  have hext := h.identities
  have hlasting : ∀ n, (db₀.node? n).isSome → (db'.node? n).isSome :=
    fun n hn => node?_isSome_persists hext (hp.lasting n hn)
  cases h with
  | stmt st hst hexec =>
    have hactive := activeEdges_of_planting hst hexec
    have hids := (Stmt.exec_agreeOff hexec).identities
        ((License.planting db₀ f).not_identities db st hst)
    have hbelow : ∀ x y, db.Below x y → db'.Below x y := by
      intro x y h
      exact below_mono (fun e he => hactive ▸ he) h
    refine ⟨?_, hlasting, ?_, ?_⟩
    · intro e he
      rw [hactive]
      exact hp.kept e he
    · intro e he
      rw [hactive] at he
      rcases hp.grown e he with hold | ⟨hnew, hhost, hunder⟩
      · exact Or.inl hold
      · exact Or.inr ⟨hnew, hhost, hbelow _ _ hunder⟩
    · intro n hn
      rw [Db.node?_isSome_eq, hids, ← Db.node?_isSome_eq] at hn
      rcases hp.born n hn with hold | hunder
      · exact Or.inl hold
      · exact Or.inr (hbelow _ _ hunder)
  | birth row modifiedAt id g hhost hg hrow hfill hedge =>
    obtain ⟨hnone, hnodes, -, -, -, -, -, hedges⟩ := birth_shape hrow hfill hedge
    have hactive : db'.activeEdges =
        db.activeEdges ++ [⟨id, g, row.nodeId, row.volumeId, false, row.name⟩] := by
      simp [Db.activeEdges, hedges]
    have hkept : ∀ e ∈ db.activeEdges, e ∈ db'.activeEdges := by
      intro e he
      rw [hactive]
      exact List.mem_append_left _ he
    -- the host is the container itself or was planted before
    have hunder : db'.Below f g := by
      rcases hhost with rfl | hfresh
      · exact ReflTransGen.refl
      · rcases hp.born g hg with hold | h
        · rw [hfresh] at hold
          cases hold
        · exact below_mono hkept h
    have hnew : db'.Below f row.nodeId := by
      refine hunder.tail ⟨⟨id, g, row.nodeId, row.volumeId, false, row.name⟩, ?_, rfl, rfl⟩
      rw [hactive]
      exact List.mem_append_right _ (List.mem_singleton_self _)
    have hgone : db₀.node? row.nodeId = none := by
      by_contra hne
      have hold := hp.lasting row.nodeId (Option.isSome_iff_ne_none.mpr hne)
      rw [hnone] at hold
      cases hold
    refine ⟨fun e he => hkept e (hp.kept e he), hlasting, ?_, ?_⟩
    · intro e he
      rw [hactive] at he
      rcases List.mem_append.mp he with he | he
      · rcases hp.grown e he with hold | ⟨hfresh, hhost', hunder'⟩
        · exact Or.inl hold
        · exact Or.inr ⟨hfresh, hhost', below_mono hkept hunder'⟩
      · obtain rfl := List.mem_singleton.mp he
        exact Or.inr ⟨hgone, hhost, hunder⟩
    · intro n hn
      by_cases heq : n = row.nodeId
      · rw [heq]
        exact Or.inr hnew
      · rw [Db.node?, hnodes, lookup_append_of_ne (Ne.symm heq)] at hn
        rcases hp.born n hn with hold | h
        · exact Or.inl hold
        · exact Or.inr (below_mono hkept h)

theorem Strides.plants (h : Strides (License.planting db f) now db db') : Plants f db db' := by
  induction h with
  | refl => exact Plants.refl f db
  | tail _ hstride ih => exact ih.stride hstride

/-- What is planted hangs under a root exactly when the container did. -/
theorem Plants.below_iff (h : Plants f db db') (hl : db.Linked) (hr : (db.node? r).isSome)
    (he : e ∈ db'.activeEdges) (hnew : e ∉ db.activeEdges) : db'.Below r e.toId ↔ db.Below r f := by
  obtain ⟨hfresh, -, hunder⟩ := (h.grown e he).resolve_left hnew
  constructor
  · intro hbelow
    by_contra hf
    -- then nothing new can be reached: the way would lead over the container or over a new node
    have hold : ∀ x, db'.Below r x → db.Below r x := by
      intro x hx
      induction hx with
      | refl => exact ReflTransGen.refl
      | @tail y x _ hyx ih =>
        obtain ⟨e', he', rfl, rfl⟩ := hyx
        rcases h.grown e' he' with hin | ⟨-, hhost, -⟩
        · exact ih.tail ⟨e', hin, rfl, rfl⟩
        · have hsome := node?_isSome_of_below hl hr ih
          rcases hhost with heq | hnone
          · rw [heq] at ih
            exact absurd ih hf
          · rw [hnone] at hsome
            cases hsome
    have hsome := node?_isSome_of_below hl hr (hold _ hbelow)
    rw [hfresh] at hsome
    cases hsome
  · intro hf
    exact ((below_mono h.kept hf).trans hunder).tail ⟨e, he, rfl, rfl⟩

/-! ### The requests that place a node -/

theorem createContainer_plants (hl : tx.db.Linked)
    (h : createContainer E k tx mount path = .ok (tx', n)) :
    ∃ m p, requireMount E k tx.db mount true = .ok m ∧
      resolveParent tx.db m.mountPoint path = .ok p ∧
      Strides (.planting tx.db p.container) E.now tx.db tx'.db := by
  simp only [createContainer, bind_eq_ok, pure_eq_ok, Prod.mk.injEq] at h
  obtain ⟨m, hm, p, hp, u, -, ⟨tx₁, node⟩, hnew, tx₂, hlink, rfl, rfl⟩ := h
  refine ⟨m, p, hm, hp, ?_⟩
  have hexists := resolveParent_exists (anchor_exists hl.anchor hm) hp
  exact birth_strides hnew ReflTransGen.refl hlink (Or.inl rfl) hexists

theorem createLeaf_plants {type : NodeType} {data : Bytes} (hl : tx.db.Linked)
    (h : createLeaf C E k tx mount path type data = .ok (tx', n)) :
    ∃ m p, requireMount E k tx.db mount true = .ok m ∧
      resolveParent tx.db m.mountPoint path = .ok p ∧
      Strides (.planting tx.db p.container) E.now tx.db tx'.db := by
  simp only [createLeaf, bind_eq_ok, pure_eq_ok, Prod.mk.injEq] at h
  obtain ⟨m, hm, p, hp, u, -, ⟨tx₁, node⟩, hnew, tx₂, hput, tx₃, hlink, rfl, rfl⟩ := h
  refine ⟨m, p, hm, hp, ?_⟩
  have hexists := resolveParent_exists (anchor_exists hl.anchor hm) hp
  exact birth_strides hnew (putInitialContent_steps hput) hlink (Or.inl rfl) hexists

theorem copy_plants (hl : tx.db.Linked) (h : copy E k tx mount src dst = .ok (tx', n)) :
    ∃ m p, requireMount E k tx.db mount true = .ok m ∧
      resolveParent tx.db m.mountPoint dst = .ok p ∧
      Strides (.planting tx.db p.container) E.now tx.db tx'.db := by
  simp only [copy, bind_eq_ok, pure_eq_ok, Prod.mk.injEq] at h
  obtain ⟨m, hm, found, -, p, hp, u, -, s, hfold, root, -, rfl, -⟩ := h
  refine ⟨m, p, hm, hp, ?_⟩
  have hhost : (License.planting tx.db p.container).host p.container := Or.inl rfl
  have hexists := resolveParent_exists (anchor_exists hl.anchor hm) hp
  have hinv := foldlM_invariant
    (P := fun s : Tx × IdMap NodeId => Strides (.planting tx.db p.container) E.now tx.db s.1.db ∧
      Hosts (.planting tx.db p.container) s.1 (p.container :: s.2.map Prod.snd))
    (fun s r t _ hs hrow => copyRow_strides (fun n hn => Or.inr hn) hs.1 hs.2 hrow) hfold
    ⟨ReflTransGen.refl, by simp [Hosts, hhost, hexists]⟩
  exact hinv.1

/-- `openWrite` places a node when it finds none at the path. -/
theorem openWrite_plants {mode : WriteMode} {supplied : Option LockId} {d : Descriptor}
    (hl : tx.db.Linked) (h : openWrite C E k tx mount path mode supplied = .ok (tx', d)) :
    (∀ e ∈ tx'.db.activeEdges, e ∈ tx.db.activeEdges) ∨
      ∃ m p, requireMount E k tx.db mount true = .ok m ∧
        resolveParent tx.db m.mountPoint path = .ok p ∧
        Strides (.planting tx.db p.container) E.now tx.db tx'.db := by
  simp only [openWrite, bind_eq_ok] at h
  obtain ⟨m, hm, ⟨tx₁, node⟩, htarget, ⟨tx₂, l⟩, hlock, h⟩ := h
  have heq : tx' = tx₂ := by
    split at h
    · exact (congrArg Prod.fst (Except.ok.inj h)).symm
    · simp only [bind_eq_ok, pure_eq_ok, Prod.mk.injEq] at h
      obtain ⟨u, -, pending, -, heq, -⟩ := h
      exact heq.symm
  rw [heq]
  simp only [openTarget] at htarget
  split at htarget
  · simp only [bind_eq_ok, pure_eq_ok, Prod.mk.injEq] at htarget
    obtain ⟨u, -, rfl, -⟩ := htarget
    left
    have hlocked : Strides .idle E.now tx.db tx₂.db := writerLock_strides trivial hlock
    intro e he
    rcases hlocked.displaces.added e he with hold | hhost | ⟨e₀, -, hdetach, -⟩
    · exact hold
    · exact hhost.elim
    · exact hdetach.elim
  · split at htarget
    · cases htarget
    · obtain ⟨m', p, hm', hp, hplants⟩ := createLeaf_plants hl htarget
      exact Or.inr ⟨m', p, hm', hp, hplants.trans (writerLock_strides trivial hlock)⟩
  · cases htarget

/-- `unpack` archives the placement it picks and plants under its parent. -/
theorem unpack_plants (hl : tx.db.Linked) (h : unpack C M E k tx mount path = .ok tx') :
    ∃ m found e, ∃ tx₁ : Tx, requireMount E k tx.db mount true = .ok m ∧
      resolve tx.db m.mountPoint path = .ok found ∧
      tx.db.getActiveParent found.node = some e ∧
        tx₁.db = tx.db.archiveWhere E.now (fun e' => e'.edgeId = e.edgeId) ∧
      Strides (.planting tx₁.db e.fromId) E.now tx₁.db tx'.db := by
  simp only [unpack, bind_eq_ok, pure_eq_ok, orRaise_eq_ok] at h
  obtain ⟨m, hm, found, hfound, u, -, u₁, -, blob, -, nodes, -, e, he, tx₁, harch, s, hfold, rfl⟩ :=
    h
  obtain ⟨db₁, hexec, rfl⟩ := Tx.run_ok.mp harch
  obtain rfl := Except.ok.inj hexec
  refine ⟨m, found, e, { tx with
    db := tx.db.archiveWhere E.now (fun e' => e'.edgeId = e.edgeId) }, hm, hfound, he, rfl, ?_⟩
  have hhost : (License.planting
      (tx.db.archiveWhere E.now (fun e' => e'.edgeId = e.edgeId)) e.fromId).host e.fromId :=
    Or.inl rfl
  have hexists := pickedPlacement_parent hl he
  have hinv := foldlM_invariant
    (P := fun s : Tx × List NodeId =>
      Strides (.planting (tx.db.archiveWhere E.now (fun e' => e'.edgeId = e.edgeId)) e.fromId) E.now
        (tx.db.archiveWhere E.now (fun e' => e'.edgeId = e.edgeId)) s.1.db ∧
      Hosts (.planting (tx.db.archiveWhere E.now (fun e' => e'.edgeId = e.edgeId)) e.fromId) s.1
        (e.fromId :: s.2))
    (fun s pn t _ hs hrow => unpackNode_strides (fun n hn => Or.inr hn) hs.1 hs.2 hrow) hfold
    ⟨ReflTransGen.refl, ?_⟩
  · exact hinv.1
  · intro n hn
    obtain rfl := List.mem_singleton.mp hn
    exact ⟨hhost, hexists⟩

/-- What is planted after the placement of the unpacked leaf was archived. -/
theorem unpacked_below_iff {e₀ : EdgeRow} (hf : db.Forest) (hs : db.Sound)
    (hk : Keyed EdgeRow.edgeId db.edges) (hr : (db.node? r).isSome) (he₀ : e₀ ∈ db.activeEdges)
    (hplants : Plants e₀.fromId (db.archiveWhere now (fun e' => e'.edgeId = e₀.edgeId)) db')
    (he : e ∈ db'.activeEdges) (hnew : e ∉ db.activeEdges) :
    db'.Below r e.toId ↔ db.Below r e₀.fromId := by
  have hactive : (db.archiveWhere now (fun e' => e'.edgeId = e₀.edgeId)).activeEdges =
      db.activeEdges.filter (fun e => !(decide (e.edgeId = e₀.edgeId))) :=
        Db.activeEdges_archiveWhere _
  have hless : ∀ e ∈ (db.archiveWhere now (fun e' => e'.edgeId = e₀.edgeId)).activeEdges,
      e ∈ db.activeEdges := by
    intro e he
    rw [hactive] at he
    exact (List.mem_filter.mp he).1
  have hlinked : (db.archiveWhere now (fun e' => e'.edgeId = e₀.edgeId)).Linked := by
    have hany : ({ License.idle with detach := fun _ => True } : License).grants db
        (.archiveEdge e₀.edgeId) := fun _ _ _ => trivial
    exact (Stride.sound_stmt hany rfl hs).linked
  have hstart : (db.archiveWhere now (fun e' => e'.edgeId = e₀.edgeId)).Below r e₀.fromId ↔
      db.Below r e₀.fromId := by
    constructor
    · exact below_mono hless
    · intro h
      have hcycle : ¬ db.Below e₀.toId e₀.fromId := by
        intro hback
        exact hf.acyclic e₀.fromId (TransGen.head' ⟨e₀, he₀, rfl, rfl⟩ hback)
      refine reach_avoiding ?_ hcycle h
      rintro x y ⟨e₁, he₁, rfl, rfl⟩ hnot
      refine ⟨e₁, ?_, rfl, rfl⟩
      rw [hactive]
      apply List.mem_filter.mpr
      refine ⟨he₁, ?_⟩
      rw [Bool.not_eq_true', decide_eq_false_iff_not]
      intro hid
      have hsame : e₁ = e₀ :=
        eq_of_key_eq hk (Db.mem_activeEdges.mp he₁).1 (Db.mem_activeEdges.mp he₀).1 hid
      rw [hsame] at hnot
      exact hnot ReflTransGen.refl
  rw [← hstart]
  exact hplants.below_iff hlinked hr he (fun hold => hnew (hless e hold))

/-- The placement of an existing node after some of its placements in the subtree of the anchor
were archived. -/
theorem adopted_below_iff {drop : EdgeRow → Bool} (hf : db.Forest) (hl : db.Linked)
    (hroot : ∃ v ∈ db.volumes, v.rootNodeId = some r)
    (hactive : db'.activeEdges = db.activeEdges.filter (fun e' => !drop e') ++ [e])
    (hto : db.Below a e.toId) (hfrom : db.Below r e.fromId ↔ db.Below r a)
    (hdrop : ∀ e' ∈ db.activeEdges, drop e' = true → e'.toId = e.toId ∧ db.Below a e'.fromId)
    (hcycle : ¬ db.Below e.toId e.fromId) : db'.Below r e.toId ↔ db.Below r e.toId := by
  have hchild : ∀ x y, db'.Child x y → db.Child x y ∨ (x = e.fromId ∧ y = e.toId) := by
    rintro x y ⟨e', he', rfl, rfl⟩
    rw [hactive] at he'
    rcases List.mem_append.mp he' with he' | he'
    · exact Or.inl ⟨e', (List.mem_filter.mp he').1, rfl, rfl⟩
    · rw [List.mem_singleton.mp he']
      exact Or.inr ⟨rfl, rfl⟩
  have hnew : db'.Child e.fromId e.toId := by
    refine ⟨e, ?_, rfl, rfl⟩
    rw [hactive]
    exact List.mem_append_right _ (List.mem_singleton_self _)
  -- what is not below the node keeps its placements
  have hkeep : ∀ x y, db.Child x y → ¬ db.Below e.toId y → db'.Child x y := by
    rintro x y ⟨e', he', rfl, rfl⟩ hnot
    refine ⟨e', ?_, rfl, rfl⟩
    rw [hactive]
    apply List.mem_append_left
    apply List.mem_filter.mpr
    refine ⟨he', ?_⟩
    by_contra hdropped
    obtain ⟨heq, -⟩ := hdrop e' he' (by simpa using hdropped)
    rw [heq] at hnot
    exact hnot ReflTransGen.refl
  constructor
  · intro h
    rcases reach_insert hchild h with hold | ⟨hfrom', -⟩
    · exact hold
    · exact (hfrom.mp hfrom').trans hto
  · intro h
    by_cases ha : db.Below r a
    · exact (reach_avoiding hkeep hcycle (hfrom.mpr ha)).tail hnew
    · -- the node hangs under the root by a placement outside the subtree of the anchor, which stays
      rcases ReflTransGen.cases_tail h with heq | ⟨y, hy, e', he', rfl, heq⟩
      · rw [heq]
        exact ReflTransGen.refl
      · have hnot : ¬ db.Below e.toId e'.fromId := by
          intro hback
          rw [← heq] at hback
          exact hf.acyclic e'.fromId (TransGen.head' ⟨e', he', rfl, rfl⟩ hback)
        refine (reach_avoiding hkeep hnot hy).tail ⟨e', ?_, rfl, heq⟩
        rw [hactive]
        apply List.mem_append_left
        apply List.mem_filter.mpr
        refine ⟨he', ?_⟩
        by_contra hdropped
        obtain ⟨-, hunder⟩ := hdrop e' he' (by simpa using hdropped)
        exact ha (hf.above hl hroot (hl.parent e' (Db.mem_activeEdges.mp he').1) hy hunder)

/-- The placement `linkChild` adds. -/
theorem linkChild_edge {m : MountCtx} {parent child : NodeId} {name : Option String}
    (h : linkChild E tx m parent child name = .ok tx') :
    tx.db.nodeType? parent = some .container ∧
      ∃ e, e.fromId = parent ∧ e.toId = child ∧ tx'.db.activeEdges = tx.db.activeEdges ++ [e] := by
  obtain ⟨db₁, hedge, rfl⟩ := linkChild_ok h
  obtain ⟨row, dst, hrow, -, -, hcont, -, -, -, rfl⟩ := Db.createEdge_ok hedge
  refine ⟨?_, _, rfl, rfl, Db.activeEdges_append _ _ rfl⟩
  rw [Db.nodeType?, hrow, Option.map_some, hcont]

theorem link_below_iff (hf : tx.db.Forest) (hl : tx.db.Linked)
    (hroot : ∃ v ∈ tx.db.volumes, v.rootNodeId = some r) (h : link E k tx mount src dst = .ok tx')
    (he : e ∈ tx'.db.activeEdges) (hnew : e ∉ tx.db.activeEdges) :
    ∃ m found, requireMount E k tx.db mount true = .ok m ∧
      resolve tx.db m.mountPoint src = .ok found ∧
      (tx'.db.Below r e.toId ↔ tx.db.Below r found.node) := by
  simp only [link, bind_eq_ok, refuse_eq_ok, decide_eq_false_iff_not] at h
  obtain ⟨m, hm, found, hfound, u, htype, u', -, p, hp, u₂, -, u₃, -, hlink⟩ := h
  refine ⟨m, found, hm, hfound, ?_⟩
  obtain ⟨hparent, e', hfrom, hto, hactive⟩ := linkChild_edge hlink
  rw [hactive] at he
  obtain rfl : e = e' := List.mem_singleton.mp ((List.mem_append.mp he).resolve_left hnew)
  have hleaf : tx.db.nodeType? found.node ≠ some .container := by
    rw [resolve_nodeType hfound]
    intro heq
    exact htype (Option.some.inj heq)
  have hkept : tx'.db.activeEdges = tx.db.activeEdges.filter (fun _ => !false) ++ [e] := by
    rw [hactive, Bool.not_false, List.filter_true]
  rw [← hto]
  refine adopted_below_iff hf hl hroot hkept (hto ▸ resolve_below hfound)
    (hfrom ▸ below_container_iff hf hl hroot hp) ?_ ?_
  · intro e' _ hdrop
    cases hdrop
  · intro hbelow
    have heq := below_of_leaf hl (hto ▸ hleaf) hbelow
    rw [← hto, ← heq, hfrom] at hleaf
    exact hleaf hparent

theorem move_below_iff (hf : tx.db.Forest) (hl : tx.db.Linked)
    (hroot : ∃ v ∈ tx.db.volumes, v.rootNodeId = some r)
    (hshallow : ∀ m found p, requireMount E k tx.db mount true = .ok m →
      resolve tx.db m.mountPoint src = .ok found →
      resolveParent tx.db m.mountPoint dst = .ok p → found.type = .container →
      ∀ n, Leads tx.db.Child n found.node p.container → n ≤ depthCap)
    (h : move E k tx mount src dst = .ok tx') (he : e ∈ tx'.db.activeEdges)
    (hnew : e ∉ tx.db.activeEdges) :
    ∃ m found, requireMount E k tx.db mount true = .ok m ∧
      resolve tx.db m.mountPoint src = .ok found ∧
      (tx'.db.Below r e.toId ↔ tx.db.Below r found.node) := by
  simp only [move, bind_eq_ok, refuse_eq_ok, decide_eq_false_iff_not] at h
  obtain ⟨m, hm, found, hfound, u, -, sp, hsp, p, hp, u₁, -, u₂, hcheck, u₃, -, tx₁, harch,
    tx₂, hlink, hname⟩ := h
  refine ⟨m, found, hm, hfound, ?_⟩
  obtain ⟨db₁, hexec, rfl⟩ := Tx.run_ok.mp harch
  obtain rfl := Except.ok.inj hexec
  obtain ⟨hparent, e', hfrom, hto, hactive⟩ := linkChild_edge hlink
  have hsame : tx'.db.activeEdges = tx₂.db.activeEdges := by
    split at hname
    · obtain ⟨db₂, hexec, rfl⟩ := Tx.run_ok.mp hname
      rw [Db.activeEdges, (Stmt.exec_agreeOff hexec).edges (by simp [Stmt.touches])]
      rfl
    · rw [Except.ok.inj hname]
  have hkept : tx'.db.activeEdges =
      tx.db.activeEdges.filter (fun e₀ => !Db.isPlacement sp.container found.node sp.name e₀) ++
      [e'] := by
    rw [hsame, hactive]
    congr 1
    exact Db.activeEdges_archiveWhere _
  rw [hkept] at he
  obtain rfl : e = e' := by
    rcases List.mem_append.mp he with hold | hlast
    · exact absurd (List.mem_filter.mp hold).1 hnew
    · exact List.mem_singleton.mp hlast
  have hcontainer : tx.db.nodeType? p.container = some .container := hparent
  rw [← hto]
  refine adopted_below_iff hf hl hroot hkept (hto ▸ resolve_below hfound)
    (hfrom ▸ below_container_iff hf hl hroot hp) ?_ ?_
  · intro e₀ _ hdrop
    have hplaced := of_decide_eq_true hdrop
    exact ⟨hplaced.2.1.trans hto.symm, below_of_isPlacement hsp hdrop⟩
  · intro hbelow
    rw [hto, hfrom] at hbelow
    by_cases htype : found.type = .container
    · have hseen := checkCycle_of_below (hshallow m found p hm hfound hp htype) hbelow
      exact hcheck ⟨htype, hseen⟩
    · have hleaf : tx.db.nodeType? found.node ≠ some .container := by
        rw [resolve_nodeType hfound]
        intro heq
        exact htype (Option.some.inj heq)
      have heq := below_of_leaf hl hleaf hbelow
      rw [heq] at hcontainer
      exact hleaf hcontainer

/-! ### Steps -/

/-- The requests that place nodes. -/
def Request.Places : Request → Prop
  | .createContainer _ | .createEntry .. | .createSpecial .. | .copy .. | .link .. | .move ..
  | .unpack _ => True
  | _ => False

def Op.Places : Op → Prop
  | .request _ q => q.Places
  | .openWrite .. => True
  | _ => False

/-- A request through a mount anchored at `a` places under `r`: the anchor hangs there; of an
existing node, the node does; of a pack, the container the unpacked nodes come to. -/
def Request.Grounded (db : Db) (a r : NodeId) : Request → Prop
  | .link src _ | .move src _ => ∀ found, resolve db a src = .ok found → db.Below r found.node
  | .unpack path => ∀ e, pickedPlacement db a path e → db.Below r e.fromId
  | _ => db.Below r a

def Op.Grounded (E : Env) (s : Sys) (r : NodeId) : Op → Prop
  | .request mount q => q.Grounded s.db (s.db.anchorOf E.now mount) r
  | .openWrite mount .. => s.db.Below r (s.db.anchorOf E.now mount)
  | _ => True

/-- Under an anchor that hangs under the root, all but unpacking is grounded, and so is unpacking
a leaf with one placement. -/
theorem Request.grounded_of_anchor {q : Request} (h : db.Below r a)
    (hsole : ∀ path found, q = .unpack path → resolve db a path = .ok found →
      ∀ e ∈ db.activeEdges, e.toId = found.node → db.Below a e.fromId) : q.Grounded db a r := by
  cases q with
  | link src dst =>
    intro found hfound
    exact h.trans (resolve_below hfound)
  | move src dst =>
    intro found hfound
    exact h.trans (resolve_below hfound)
  | unpack path =>
    rintro e ⟨found, hfound, he⟩
    have hpick : db.activeEdges.find? (fun e => e.toId = found.node) = some e := he
    have hto : e.toId = found.node := by simpa using List.find?_some hpick
    exact h.trans (hsole path found rfl hfound e (List.mem_of_find?_eq_some hpick) hto)
  | _ => exact h

/-- The node a request placed hangs under a root exactly when the request was grounded there. -/
theorem request_below_iff {q : Request} {reply : Reply} (hf : tx.db.Forest) (hs : tx.db.Sound)
    (hk : Keyed EdgeRow.edgeId tx.db.edges)
    (hroot : ∃ v ∈ tx.db.volumes, v.rootNodeId = some r) (hplaces : q.Places)
    (hshallow : ∀ src dst, q = .move src dst →
      ∀ found p, resolve tx.db (tx.db.anchorOf E.now mount) src = .ok found →
      resolveParent tx.db (tx.db.anchorOf E.now mount) dst = .ok p → found.type = .container →
      ∀ n, Leads tx.db.Child n found.node p.container → n ≤ depthCap)
    (h : q.run C M E k tx mount = .ok (tx', reply)) (he : e ∈ tx'.db.activeEdges)
    (hnew : e ∉ tx.db.activeEdges) :
    tx'.db.Below r e.toId ↔ q.Grounded tx.db (tx.db.anchorOf E.now mount) r := by
  have hr : (tx.db.node? r).isSome := by
    obtain ⟨v, hv, hvr⟩ := hroot
    exact Db.node?_isSome_of_type (hs.linked.root v hv r hvr)
  have hreply : ∀ {α : Type} {f : α → Reply} {x : Except FsError (Tx × α)},
      asReply f x = .ok (tx', reply) →
      ∃ a, x = .ok (tx', a) := by
    intro α f x hx
    simp only [asReply, map_eq_ok, Prod.mk.injEq] at hx
    obtain ⟨⟨t, a⟩, hx, rfl, -⟩ := hx
    exact ⟨a, hx⟩
  have hdone : ∀ {x : Except FsError Tx}, noReply x = .ok (tx', reply) → x = .ok tx' := by
    intro x hx
    simp only [noReply, map_eq_ok, Prod.mk.injEq] at hx
    obtain ⟨t, hx, rfl, -⟩ := hx
    exact hx
  -- what is made new hangs in the container the path leads to, below the mount's root
  have hplanted : ∀ path m p, requireMount E k tx.db mount true = .ok m →
      resolveParent tx.db m.mountPoint path = .ok p →
      Strides (.planting tx.db p.container) E.now tx.db tx'.db →
      (tx'.db.Below r e.toId ↔ tx.db.Below r (tx.db.anchorOf E.now mount)) := by
    intro path m p hm hp hstrides
    rw [hstrides.plants.below_iff hs.linked hr he hnew,
      below_container_iff hf hs.linked hroot hp, anchorOf_eq hm]
  -- `link` and `move` bring a node with its own subtree, so a cycle must be shut out
  cases q with
  | createContainer path =>
    obtain ⟨a, h⟩ := hreply h
    obtain ⟨m, p, hm, hp, hstrides⟩ := createContainer_plants hs.linked h
    exact hplanted path m p hm hp hstrides
  | createEntry path data =>
    obtain ⟨a, h⟩ := hreply h
    obtain ⟨m, p, hm, hp, hstrides⟩ := createLeaf_plants hs.linked h
    exact hplanted path m p hm hp hstrides
  | createSpecial path type data =>
    obtain ⟨a, h⟩ := hreply h
    simp only [createSpecial, bind_eq_ok] at h
    obtain ⟨u, -, h⟩ := h
    obtain ⟨m, p, hm, hp, hstrides⟩ := createLeaf_plants hs.linked h
    exact hplanted path m p hm hp hstrides
  | copy src dst =>
    obtain ⟨a, h⟩ := hreply h
    obtain ⟨m, p, hm, hp, hstrides⟩ := copy_plants hs.linked h
    exact hplanted dst m p hm hp hstrides
  | link src dst =>
    obtain ⟨m, found, hm, hfound, hiff⟩ := link_below_iff hf hs.linked hroot (hdone h) he hnew
    rw [hiff, Request.Grounded, anchorOf_eq hm]
    constructor
    · intro hbelow found' hfound'
      rw [← Except.ok.inj (hfound.symm.trans hfound')]
      exact hbelow
    · intro hall
      exact hall found hfound
  | move src dst =>
    have hnear : ∀ m found p, requireMount E k tx.db mount true = .ok m →
        resolve tx.db m.mountPoint src = .ok found →
        resolveParent tx.db m.mountPoint dst = .ok p → found.type = .container →
        ∀ n, Leads tx.db.Child n found.node p.container → n ≤ depthCap := by
      intro m found p hm hfound hp
      rw [← anchorOf_eq hm] at hfound hp
      exact hshallow src dst rfl found p hfound hp
    obtain ⟨m, found, hm, hfound, hiff⟩ := move_below_iff hf hs.linked hroot hnear (hdone h) he hnew
    rw [hiff, Request.Grounded, anchorOf_eq hm]
    constructor
    · intro hbelow found' hfound'
      rw [← Except.ok.inj (hfound.symm.trans hfound')]
      exact hbelow
    · intro hall
      exact hall found hfound
  | unpack path =>
    obtain ⟨m, found, e₀, tx₁, hm, hfound, he₀, harch, hstrides⟩ :=
      unpack_plants hs.linked (hdone h)
    have hplants := hstrides.plants
    rw [harch] at hplants
    rw [unpacked_below_iff hf hs hk hr (List.mem_of_find?_eq_some he₀) hplants he hnew,
      Request.Grounded, anchorOf_eq hm]
    have hpicked : pickedPlacement tx.db m.mountPoint path e₀ := ⟨found, hfound, he₀⟩
    constructor
    · intro hbelow e' he'
      rw [← pickedPlacement_unique hpicked he']
      exact hbelow
    · intro hall
      exact hall e₀ hpicked
  | _ => exact hplaces.elim

variable {s : Sys} {l : Label}

/-- In every run whose moves are shallow: what a step places hangs under a volume's root when the
step is done exactly when the step was grounded there. -/
theorem placed_reachable_iff_grounded (h : Reaches C M ShallowMoves s) (hl : ShallowMoves s l)
    (hplaces : l.op.Places) (hroot : ∃ v ∈ s.db.volumes, v.rootNodeId = some r)
    (he : e ∈ (step C M s l).db.activeEdges)
    (hnew : ∀ e₀ ∈ s.db.activeEdges, e₀.edgeId ≠ e.edgeId) :
    (step C M s l).db.Below r e.toId ↔ l.op.Grounded l.env s r := by
  have hf := h.forest
  have hs : s.db.Sound := h.sound
  have hk := h.edges_keyed
  have hfresh : e ∉ s.db.activeEdges := fun hold => hnew e hold rfl
  obtain ⟨E, c, op⟩ := l
  -- edges are made by requests and by an opening that creates its entry
  cases op with
  | request mount q =>
    have hall : ∀ e ∈ (step C M s ⟨E, c, .request mount q⟩).db.activeEdges, e ∉ s.db.activeEdges →
        ((step C M s ⟨E, c, .request mount q⟩).db.Below r e.toId ↔
        q.Grounded s.db (s.db.anchorOf E.now mount) r) := by
      refine transact_db (P := fun db' : Db => ∀ e ∈ db'.activeEdges, e ∉ s.db.activeEdges →
        (db'.Below r e.toId ↔ q.Grounded s.db (s.db.anchorOf E.now mount) r)) (fun _ _ => rfl) ?_ ?_
      · intro e he hnew
        exact absurd he hnew
      · intro tx a hrun e he hnew
        refine request_below_iff hf hs hk hroot hplaces ?_ hrun he hnew
        rintro src dst rfl
        exact hl
    exact hall e he hfresh
  | openWrite mount path mode lock =>
    have hall : ∀ e ∈ (step C M s ⟨E, c, .openWrite mount path mode lock⟩).db.activeEdges,
        e ∉ s.db.activeEdges →
        ((step C M s ⟨E, c, .openWrite mount path mode lock⟩).db.Below r e.toId ↔
        s.db.Below r (s.db.anchorOf E.now mount)) := by
      refine transact_db (P := fun db' : Db => ∀ e ∈ db'.activeEdges, e ∉ s.db.activeEdges →
        (db'.Below r e.toId ↔ s.db.Below r (s.db.anchorOf E.now mount))) (fun _ _ => rfl) ?_ ?_
      · intro e he hnew
        exact absurd he hnew
      · intro tx d hrun e he hnew
        have hr : (s.db.node? r).isSome := by
          obtain ⟨v, hv, hvr⟩ := hroot
          exact Db.node?_isSome_of_type (hs.linked.root v hv r hvr)
        rcases openWrite_plants hs.linked hrun with hsame | ⟨m, p, hm, hp, hstrides⟩
        · exact absurd (hsame e he) hnew
        · have ha : s.db.anchorOf E.now mount = m.mountPoint := anchorOf_eq hm
          have hiff := hstrides.plants.below_iff hs.linked hr he hnew
          rw [hiff, ha]
          exact below_container_iff hf hs.linked hroot hp
    exact hall e he hfresh
  | _ => exact hplaces.elim

/-- Two mounts of a volume, the second anchored at the container `d`. -/
def anchoredRun : List Label :=
  [⟨.counting 0, 0, .createVolume none 128 none .none⟩,
    ⟨.counting 1, 0, .mount { volume := 0 }⟩,
    ⟨.counting 2, 0, .request 1 (.createContainer "d")⟩,
    ⟨.counting 4, 0, .mount { volume := 0, path := "d", allowOverlap := true }⟩]

/-- Creating an entry through the second one. -/
theorem placed_reachable_iff_grounded_anchored :
    let s := anchoredRun.foldl (step Crypto.xorStream Msgpack.refusing) {}
    let s' := step Crypto.xorStream Msgpack.refusing s ⟨.counting 5, 0,
      .request 4 (.createEntry "x" [7])⟩
    s'.db.Below 0 5 := by
  intro s s'
  have hguards : GuardedRuns.Guards (step Crypto.xorStream Msgpack.refusing) ShallowMoves {}
      anchoredRun :=
    ⟨trivial, trivial, trivial, trivial, trivial⟩
  have hroot : ∃ v ∈ s.db.volumes, v.rootNodeId = some 0 := by decide +kernel
  have hplaced : (⟨6, 2, 5, 0, false, "x"⟩ : EdgeRow) ∈ s'.db.activeEdges := by decide +kernel
  have hnew : ∀ e₀ ∈ s.db.activeEdges, e₀.edgeId ≠ 6 := by decide +kernel
  have hd : s.db.Child 0 2 := ⟨⟨3, 0, 2, 0, false, "d"⟩, by decide +kernel, rfl, rfl⟩
  have hanchor : s.db.anchorOf 0 4 = 2 := by decide +kernel
  have hiff := placed_reachable_iff_grounded (reaches_foldl hguards)
    (l := ⟨.counting 5, 0, .request 4 (.createEntry "x" [7])⟩) trivial trivial hroot hplaced hnew
  refine hiff.mpr ?_
  change s.db.Below 0 (s.db.anchorOf 0 4)
  rw [hanchor]
  exact ReflTransGen.single hd

/-- The anchor of a mount is removed through another, and the mount goes on: an entry is made
and nothing leads to it from the root. -/
theorem removed_anchor_takes_writes :
    ∃ s l, Reaches Crypto.xorStream Msgpack.refusing ShallowMoves s ∧ ShallowMoves s l ∧
      l.op.Places ∧
      (exec Crypto.xorStream Msgpack.refusing l.env s l.conn l.op).2.toOption.isSome = true ∧
      (∃ v ∈ s.db.volumes, v.rootNodeId = some 0) ∧
      ∃ e ∈ (step Crypto.xorStream Msgpack.refusing s l).db.activeEdges,
        (∀ e₀ ∈ s.db.activeEdges, e₀.edgeId ≠ e.edgeId) ∧
        ¬ (step Crypto.xorStream Msgpack.refusing s l).db.Below 0 e.toId := by
  let ls : List Label := anchoredRun ++ [⟨.counting 5, 0, .request 1 (.removeRecursive "d")⟩]
  let s := ls.foldl (step Crypto.xorStream Msgpack.refusing) {}
  let l : Label := ⟨.counting 6, 0, .request 4 (.createEntry "x" [7])⟩
  have hguards : GuardedRuns.Guards (step Crypto.xorStream Msgpack.refusing) ShallowMoves {} ls :=
    ⟨trivial, trivial, trivial, trivial, trivial, trivial⟩
  have hplaced : (⟨7, 2, 6, 0, false, "x"⟩ : EdgeRow) ∈ (step Crypto.xorStream
      Msgpack.refusing s l).db.activeEdges := by
    decide +kernel
  have hbare : ∀ e ∈ (step Crypto.xorStream Msgpack.refusing s l).db.activeEdges, e.fromId ≠ 0 := by
    decide +kernel
  refine ⟨s, l, reaches_foldl hguards, trivial, trivial,
    by decide +kernel, by decide +kernel, _, hplaced, by decide +kernel, ?_⟩
  intro hbelow
  have hnone : ∀ y, ¬ (step Crypto.xorStream Msgpack.refusing s l).db.Child 0 y := by
    rintro y ⟨e, he, hfrom, -⟩
    exact hbare e he hfrom
  have hself : (6 : NodeId) = 0 := reach_of_isolated hnone hbelow
  exact absurd hself (by decide)

end Aloelite
