import Aloelite.NodeAttributes
import Aloelite.PackCodec
import Aloelite.TreeWalk

/-! What `pack` writes down: for each row of the walk a map that says of the node all that a
reader can be shown of it, and the place of its parent's map. -/
namespace Aloelite

open Fallible KeyedRows

variable {C : Crypto} {M : Msgpack} {k : Cipher} {db : Db} {n root : NodeId} {info : NodeRow}
  {p : Int} {name : String} {data : Option Bytes} {rows : List SubtreeRow} {r : SubtreeRow}
  {pn : PackNode} {nodes : List PackNode}

/-! ### What is carried of a node -/

/-- What a pack carries of a node; its mode are the permission bits. -/
structure Carried where
  type : NodeType
  metadata : Metadata
  createdAt : Int
  uid : Option Int
  gid : Option Int
  mode : Option Int
  xattrs : List (String × Bytes)
  retentionKeep : Option Int
  bytes : Except FsError Bytes

/-- A container has neither bytes nor a retention policy. -/
def Db.carried? (C : Crypto) (k : Cipher) (db : Db) (n : NodeId) : Option Carried :=
  (db.node? n).map (fun r =>
    { type := r.type
      metadata := r.metadata
      createdAt := r.createdAt
      uid := r.uid
      gid := r.gid
      mode := r.mode.map (· % 4096)
      xattrs := xattrItems db n
      retentionKeep :=
        if r.type = .container then none else (db.content? n).bind ContentRow.retentionKeep
      bytes := if r.type = .container then .ok [] else readContentBytes C k db n })

/-- A map that says of a node what is carried of it. -/
structure PackNode.Describes (pn : PackNode) (c : Carried) : Prop where
  type : NodeType.ofValue pn.t = some c.type
  metadata : metadataOf pn.x = .ok c.metadata
  createdAt : pn.c = some c.createdAt
  uid : pn.u = c.uid
  gid : pn.g = c.gid
  mode : pn.o.map (· % 4096) = c.mode
  xattrs : pn.xa.getD [] = c.xattrs
  bare : c.type = .container → c.retentionKeep = none ∧ c.bytes = .ok []
  leaf : c.type ≠ .container → pn.rk = c.retentionKeep ∧ c.bytes = .ok (pn.d.getD [])

theorem textPairs_jsonable (texts : List (String × String)) :
    (Value.map (texts.map (fun kv => (.str kv.1, .str kv.2)))).jsonable jsonMaxDepth = true := by
  show (texts.map (fun kv => (Value.str kv.1, Value.str kv.2))).all _ = true
  rw [List.all_eq_true]
  intro kv hkv
  obtain ⟨text, -, rfl⟩ := List.mem_map.mp hkv
  rfl

/-- Metadata written as texts are read back. -/
theorem metadataOf_texts (metadata : Metadata) :
    metadataOf (some (metadata.1.map (fun kv => (.str kv.1, .str kv.2)))) = .ok metadata := by
  have htexts : ∀ g : Value × Value → Option (String × String),
      (∀ kv : String × String, g (.str kv.1, .str kv.2) = some kv) →
      (metadata.1.map (fun kv => (Value.str kv.1, Value.str kv.2))).filterMap g = metadata.1 := by
    intro g hg
    rw [List.filterMap_map]
    exact (List.filterMap_congr fun kv _ => hg kv).trans List.filterMap_some
  have hkeys : metadata.1.pwFilter (fun a b => a.1 ≠ b.1) = metadata.1 := by
    rw [List.pwFilter_eq_self]
    exact List.pairwise_map.mp metadata.2
  have hok : refuse
      (!(Value.map (metadata.1.map (fun kv => (Value.str kv.1, Value.str kv.2)))).jsonable
        jsonMaxDepth)
      FsError.typeError = .ok () := by
    rw [textPairs_jsonable]
    rfl
  simp only [metadataOf, Option.getD_some, hok, ok_bind]
  exact congrArg Except.ok
    (Subtype.ext ((congrArg (List.pwFilter _) (htexts _ fun _ => rfl)).trans hkeys))

theorem packNode_describes (hinfo : db.node? n = some info)
    (hdata : packData C k db info = .ok data) :
    ∃ c, db.carried? C k n = some c ∧ (packNode db info p name data).Describes c := by
  have hid : info.nodeId = n := key_of_lookup hinfo
  refine ⟨_, by rw [Db.carried?, hinfo, Option.map_some], ?_⟩
  refine ⟨NodeType.ofValue_value info.type, ?_, rfl, rfl, rfl, rfl, ?_, ?_, ?_⟩
  · show metadataOf (if info.metadata.1 = [] then none else _) = .ok info.metadata
    split
    next hnone =>
      have hempty : info.metadata = .empty := Subtype.ext hnone
      rw [hempty]
      rfl
    next => exact metadataOf_texts info.metadata
  · show (if xattrItems db info.nodeId = [] then none else some (xattrItems db info.nodeId)).getD
        [] = xattrItems db n
    rw [hid]
    split
    next hnone => rw [hnone, Option.getD_none]
    next => rw [Option.getD_some]
  · intro hcont
    have hcont' : info.type = .container := hcont
    exact ⟨if_pos hcont', if_pos hcont'⟩
  · intro hleaf
    have hleaf' : info.type ≠ .container := hleaf
    rw [packData, if_neg hleaf'] at hdata
    obtain ⟨bytes, hread, rfl⟩ := map_eq_ok.mp hdata
    show (if info.type = .container then none
        else (db.content? info.nodeId).bind ContentRow.retentionKeep) =
        (if info.type = .container then none else (db.content? n).bind ContentRow.retentionKeep) ∧
      (if info.type = .container then .ok [] else readContentBytes C k db n) =
      .ok ((some bytes).getD [])
    rw [if_neg hleaf', if_neg hleaf', if_neg hleaf', hid]
    exact ⟨rfl, hid ▸ hread⟩

theorem packNode_tidy (ha : db.Attributed) : (packNode db info p name data).Tidy := by
  constructor
  · intro x hx
    change x ∈ (if info.metadata.1 = [] then none else _) at hx
    split at hx
    next => cases hx
    next =>
      obtain rfl := Option.some.inj hx
      exact ⟨info.metadata.1, info.metadata.2, rfl⟩
  · intro xa hxa
    change xa ∈ (if xattrItems db info.nodeId = [] then none else some (xattrItems db info.nodeId))
        at hxa
    split at hxa
    next => cases hxa
    next =>
      obtain rfl := Option.some.inj hxa
      exact xattrItems_names_nodup ha info.nodeId

/-! ### The loop -/

/-- The map of a row of the walk. -/
structure PackedRow (C : Crypto) (k : Cipher) (db : Db) (rows : List SubtreeRow) (r : SubtreeRow)
    (pn : PackNode) : Prop where
  carried : ∃ c, db.carried? C k r.nodeId = some c ∧ pn.Describes c
  tidy : pn.Tidy
  name : pn.n = r.name
  parent : (r.parentId = none ∧ pn.p = -1) ∨
    ∃ (j : ℕ) (q : SubtreeRow), rows[j]? = some q ∧ r.parentId = some q.nodeId ∧ pn.p = j

theorem packParent_ok {index : IdMap ℕ} (h : packParent index r = .ok p) :
    (r.parentId = none ∧ p = -1) ∨ ∃ pair ∈ index, r.parentId = some pair.1 ∧ p = pair.2 := by
  rw [packParent] at h
  split at h
  next hnone => exact Or.inl ⟨hnone, (Except.ok.inj h).symm⟩
  next old hsome =>
    obtain ⟨i, hfind, rfl⟩ := map_eq_ok.mp h
    simp only [IdMap.find, orRaise_eq_ok, Option.map_eq_some_iff] at hfind
    obtain ⟨pair, hpair, rfl⟩ := hfind
    have hkey : pair.1 = old := by simpa using List.find?_some hpair
    exact Or.inr ⟨pair, List.mem_of_find?_eq_some hpair, hkey ▸ hsome, rfl⟩

/-- What the loop of `pack` stands on after the rows `done`. -/
structure Packing (C : Crypto) (k : Cipher) (db : Db) (rows done : List SubtreeRow)
    (s : List PackNode × IdMap ℕ) : Prop where
  maps : List.Forall₂ (PackedRow C k db rows) done s.1
  index : ∀ pair ∈ s.2, ∃ q, rows[pair.2]? = some q ∧ q.nodeId = pair.1

theorem Packing.next {done rest : List SubtreeRow} {s t : List PackNode × IdMap ℕ}
    (h : Packing C k db rows done s) (ha : db.Attributed) (hrows : rows = done ++ r :: rest)
    (hround : packRow C k db s r = .ok t) :
    Packing C k db rows (done ++ [r]) t := by
  simp only [packRow, bind_eq_ok, pure_eq_ok, orRaise_eq_ok] at hround
  obtain ⟨info, hinfo, p, hp, data, hdata, rfl⟩ := hround
  have hlen : s.1.length = done.length := h.maps.length_eq.symm
  have hself : rows[s.1.length]? = some r := by
    rw [hrows, hlen, List.getElem?_append_right le_rfl, Nat.sub_self]
    rfl
  have hindex : ∀ pair ∈ (r.nodeId, s.1.length) :: s.2, ∃ q, rows[pair.2]? = some q ∧ q.nodeId =
      pair.1 := by
    intro pair hpair
    rcases List.mem_cons.mp hpair with rfl | hpair
    · exact ⟨r, hself, rfl⟩
    · exact h.index pair hpair
  refine ⟨List.rel_append h.maps
    (List.Forall₂.cons ⟨packNode_describes hinfo hdata, packNode_tidy ha, rfl, ?_⟩ .nil), hindex⟩
  refine (packParent_ok hp).imp_right ?_
  rintro ⟨pair, hpair, hparent, heq⟩
  obtain ⟨q, hq, hnode⟩ := hindex pair hpair
  exact ⟨pair.2, q, hq, hnode ▸ hparent, heq⟩

theorem Packing.run {done rest : List SubtreeRow} {s t : List PackNode × IdMap ℕ}
    (h : Packing C k db rows done s) (ha : db.Attributed) (hrows : rows = done ++ rest)
    (hloop : rest.foldlM (packRow C k db) s = .ok t) :
    Packing C k db rows rows t := by
  induction rest generalizing done s with
  | nil =>
    obtain rfl := Except.ok.inj hloop
    rw [List.append_nil] at hrows
    exact hrows ▸ h
  | cons r rest ih =>
    rw [List.foldlM_cons] at hloop
    obtain ⟨u, hround, hrest⟩ := bind_eq_ok.mp hloop
    exact ih (h.next ha hrows hround) (by rw [hrows, List.append_cons]) hrest

/-- `pack` collects one map for each row of the walk, in the order of the walk. -/
theorem packNodes_ok (ha : db.Attributed) (h : packNodes C k db root = .ok nodes) :
    List.Forall₂ (PackedRow C k db (db.enumerateSubtree root))
      (db.enumerateSubtree root) nodes := by
  obtain ⟨s, hloop, hs⟩ := bind_eq_ok.mp h
  obtain rfl := Except.ok.inj hs
  have hstart : Packing C k db (db.enumerateSubtree root) [] ([], []) :=
    ⟨.nil, fun _ hpair => absurd hpair List.not_mem_nil⟩
  exact (hstart.run ha rfl hloop).maps

theorem tidy_of_maps {rs : List SubtreeRow} (h : List.Forall₂ (PackedRow C k db rows) rs nodes) :
    ∀ pn ∈ nodes, pn.Tidy := by
  induction h with
  | nil => exact fun pn hpn => absurd hpn List.not_mem_nil
  | cons hrow _ ih => exact List.forall_mem_cons.mpr ⟨hrow.tidy, ih⟩

end Aloelite
