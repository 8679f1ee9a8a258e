import Aloelite.TreeWalk
import Aloelite.VersionNumbers
import Aloelite.LockExclusion
import Aloelite.Unpacking

/-! What the loop of `copy` makes: for each row of the walk a new node under the copy of the
row's parent, with the type, the bytes, the metadata and the creation time of the source. -/
namespace Aloelite

open Fallible KeyedRows Relation

variable {C : Crypto} {M : Msgpack} {E : Env} {k : Cipher} {L : License} {now : Int} {db db' : Db}
  {tx tx' tx₁ tx₂ : Tx} {mount : MountId} {src dst name : String} {n m : NodeId} {v w : ℕ}
  {ctx : MountCtx} {p : Parent} {r : SubtreeRow}

/-! ### Content by reference -/

theorem readContentBytes_of_none (h : db.content? n = none) :
    readContentBytes C k db n = .ok [] := by
  rw [readContentBytes, h]

theorem readContentBytes_of_some {c : ContentRow} (h : db.content? n = some c) :
    readContentBytes C k db n =
      (do return (← openChunks C k (db.readChunks n c.version)).flatten) := by
  rw [readContentBytes, h]

/-- An entry that was never written has no chunks. -/
theorem readChunks_zero (hc : db.Counted) : db.readChunks n 0 = [] := by
  have hnone : db.manifest n 0 = [] := by
    rw [Db.manifest, List.filter_eq_nil_iff]
    intro r hr hkey
    exact hc r hr (by simpa using hkey : r.contentId = n ∧ r.version = 0).2
  rw [Db.readChunks, hnone]
  rfl

/-- Manifest rows carried to another entry read as they did. -/
theorem readChunks_carried (h : db'.manifest n v = Db.carriedRefs (db.manifest m w) n v)
    (hpool : db'.chunks = db.chunks) :
    db'.readChunks n v = db.readChunks m w := by
  have hsort := List.map_insertionSort (r := fun r s : VersionRow => r.chunkIndex ≤ s.chunkIndex)
    (s := fun r s : VersionRow => r.chunkIndex ≤ s.chunkIndex)
    (fun r : VersionRow => { r with contentId := n, version := v }) (db.manifest m w)
      (fun _ _ _ _ => Iff.rfl)
  rw [Db.readChunks, Db.readChunks, h, Db.carriedRefs, ← hsort, List.filterMap_map]
  apply List.filterMap_congr
  intro r _
  show db'.chunk? r.chunkHash = _
  rw [Db.chunk?, Db.chunk?, hpool]

/-- What `copyContent` does to the tables. -/
theorem copyContent_ok (h : copyContent E tx m n = .ok tx') :
    ∃ v size, (readContentMeta tx.db m).getD (0, 0) = (v, size) ∧
      tx'.db.content? n = some ⟨n, v, size, none⟩ ∧
      tx'.db.chunks = tx.db.chunks ∧
      tx'.db.versions = tx.db.versions ++ if 0 < v then Db.carriedRefs (tx.db.manifest m v) n v
        else [] := by
  simp only [copyContent, bind_eq_ok] at h
  obtain ⟨tx₁, hcreate, h⟩ := h
  generalize (readContentMeta tx.db m).getD (0, 0) = vs at hcreate h
  obtain ⟨v, size⟩ := vs
  obtain ⟨db₁, hexec, rfl⟩ := Tx.run_ok.mp hcreate
  obtain ⟨hnone, -, rfl⟩ := Db.createContent_ok hexec
  have hself : lookup ContentRow.nodeId (tx.db.contents ++ [⟨n, v, size, none⟩]) n =
      some ⟨n, v, size, none⟩ :=
    lookup_append_self hnone
  refine ⟨v, size, rfl, ?_⟩
  split at h
  next hpos =>
    obtain ⟨db₂, hcopy, rfl⟩ := Tx.run_ok.mp h
    obtain rfl := Db.insertRefs_ok hcopy
    rw [if_pos hpos]
    exact ⟨hself, rfl, rfl⟩
  next hzero =>
    obtain rfl := Except.ok.inj h
    rw [if_neg hzero, List.append_nil]
    exact ⟨hself, rfl, rfl⟩

/-- A new entry has the bytes of the entry it was copied from. -/
theorem copyContent_bytes (h : copyContent E tx m n = .ok tx') (hc : tx.db.Counted)
    (hnew : ∀ r ∈ tx.db.versions, r.contentId ≠ n) :
    readContentBytes C k tx'.db n = readContentBytes C k tx.db m := by
  have hcounted := copyContent_counted h hc
  obtain ⟨v, size, hmeta, hcontent, hchunks, hversions⟩ := copyContent_ok h
  have hread : tx'.db.readChunks n v = tx.db.readChunks m v := by
    by_cases hpos : 0 < v
    · rw [if_pos hpos] at hversions
      refine readChunks_carried ?_ hchunks
      have hnone : tx.db.versions.filter (fun r => r.contentId = n ∧ r.version = v) = [] := by
        rw [List.filter_eq_nil_iff]
        intro r hr hkey
        exact hnew r hr (by simpa using hkey : r.contentId = n ∧ r.version = v).1
      rw [Db.manifest, hversions, List.filter_append, hnone, List.nil_append, List.filter_eq_self]
      intro r hr
      obtain ⟨r₀, -, rfl⟩ := List.mem_map.mp hr
      simp
    · obtain rfl : v = 0 := by omega
      rw [readChunks_zero hcounted, readChunks_zero hc]
  rw [readContentBytes_of_some hcontent]
  show (do return (← openChunks C k (tx'.db.readChunks n v)).flatten) = _
  rw [hread]
  cases hsrc : tx.db.content? m with
  | none =>
    rw [readContentMeta, hsrc] at hmeta
    obtain ⟨rfl, -⟩ := Prod.mk.inj hmeta
    rw [readContentBytes_of_none hsrc, readChunks_zero hc]
    rfl
  | some c =>
    rw [readContentMeta, hsrc] at hmeta
    obtain ⟨rfl, -⟩ := Prod.mk.inj hmeta
    rw [readContentBytes_of_some hsrc]

/-! ### What is seen of a node -/

/-- What a reader is shown of a node: its type, its metadata, its creation time and, of an
entry, the bytes. -/
structure Shown where
  type : NodeType
  metadata : Metadata
  createdAt : Int
  bytes : Except FsError Bytes

def Db.shown? (C : Crypto) (k : Cipher) (db : Db) (n : NodeId) : Option Shown :=
  (db.node? n).map (fun r => ⟨r.type, r.metadata, r.createdAt,
    if r.type = .container then .ok [] else readContentBytes C k db n⟩)

theorem shown?_of_node? {row : NodeRow} (h : db.node? n = some row) :
    db.shown? C k n = some ⟨row.type, row.metadata,
    row.createdAt, if row.type = .container then .ok [] else readContentBytes C k db n⟩ := by
  rw [Db.shown?, h, Option.map_some]

/-- A node that stays in the table untouched is shown as it was. -/
theorem Untouched.shown? {row : NodeRow} (h : Untouched db db' n) (hn : db.node? n = some row)
    (hn' : db'.node? n = some row) :
    db'.shown? C k n = db.shown? C k n := by
  rw [shown?_of_node? hn, shown?_of_node? hn', h.readContentBytes]

/-! ### One round of the loop -/

/-- The name the copy of a row is placed under. -/
def Parent.nameFor (p : Parent) (r : SubtreeRow) : String :=
  if r.parentId.isNone then p.name else r.name

/-- A round that goes through. -/
structure Cloned (C : Crypto) (k : Cipher) (E : Env) (p : Parent) (r : SubtreeRow) (parent : NodeId)
    (s t : Tx × IdMap NodeId) : Prop where
  hung : copyParent p s.2 r = .ok parent
  fresh : s.1.db.node? (E.ids s.1.idCount) = none
  ids : t.2 = (r.nodeId, E.ids s.1.idCount) :: s.2
  minted : s.1.idCount < t.1.idCount
  placements : t.1.db.placements = s.1.db.placements ++ [(parent, E.ids s.1.idCount, p.nameFor r)]
  shown : t.1.db.shown? C k (E.ids s.1.idCount) = s.1.db.shown? C k r.nodeId
  kept : ∀ n row, s.1.db.node? n = some row → t.1.db.node? n = some row ∧ t.1.db.shown? C k n =
    s.1.db.shown? C k n

theorem copyContent_idCount (h : copyContent E tx m n = .ok tx') : tx'.idCount = tx.idCount := by
  simp only [copyContent, bind_eq_ok] at h
  obtain ⟨tx₁, hcreate, h⟩ := h
  obtain ⟨db₁, -, rfl⟩ := Tx.run_ok.mp hcreate
  split at h
  · obtain ⟨db₂, -, rfl⟩ := Tx.run_ok.mp h
    rfl
  · obtain rfl := Except.ok.inj h
    rfl

theorem fillCopy_idCount {type : NodeType} (h : fillCopy E tx type m n = .ok tx') :
    tx'.idCount = tx.idCount := by
  rw [fillCopy] at h
  split at h
  · obtain rfl := Except.ok.inj h
    rfl
  · exact copyContent_idCount h

theorem copyRow_cloned {s t : Tx × IdMap NodeId} (h : copyRow E ctx p s r = .ok t)
    (hf : s.1.db.Filed) (hc : s.1.db.Counted) (hpool : s.1.db.Pooled) :
    ∃ parent, Cloned C k E p r parent s t := by
  simp only [copyRow, bind_eq_ok, pure_eq_ok, orRaise_eq_ok] at h
  obtain ⟨info, hinfo, parent, hparent, ⟨tx₁, new⟩, hnew, tx₂, hfill, tx₃, hlink, rfl⟩ := h
  have hborn := birth_born hnew (fillCopy_steps hfill) hlink
  have hspares := fun n hn => (birth_spares (n := n) hnew (fillCopy_steps hfill) hlink hn).untouched
      hn hpool
  have hcounted := newNode_counted hnew hc
  have hcount := fillCopy_idCount hfill
  have hfills := fillCopy_steps hfill
  obtain ⟨rfl, db₁, hrow, rfl⟩ := newNode_ok hnew
  obtain ⟨db₂, hedge, rfl⟩ := linkChild_ok hlink
  obtain ⟨hnone, hnodes, -⟩ := birth_shape hrow hfills hedge
  have hkept : ∀ n row, s.1.db.node? n = some row → db₂.node? n = some row := by
    intro n row hn
    rw [Db.node?, hnodes]
    exact lookup_append_of_some hn _
  refine ⟨parent, hparent, hnone, rfl, ?_, hborn.placements, ?_, ?_⟩
  · show s.1.idCount < tx₂.idCount + 1
    have hcount' : tx₂.idCount = s.1.idCount + 1 := hcount
    omega
  · have hself : db₂.node? (E.ids s.1.idCount) = some
        { nodeId := E.ids s.1.idCount, type := info.type, name := if r.parentId.isNone then p.name
          else r.name,
          createdAt := info.createdAt, volumeId := ctx.volume, metadata := info.metadata } := by
      rw [Db.node?, hnodes]
      exact lookup_append_self hnone
    rw [shown?_of_node? hinfo, shown?_of_node? hself]
    have hbytes : info.type ≠ .container → readContentBytes C k db₂ (E.ids s.1.idCount) =
        readContentBytes C k s.1.db r.nodeId := by
      intro hleaf
      rw [fillCopy, if_neg hleaf] at hfill
      obtain ⟨-, -, rfl⟩ := Db.createNode_ok hrow
      obtain ⟨src, dst, -, -, -, -, -, -, -, rfl⟩ := Db.createEdge_ok hedge
      have hunfiled : ∀ row ∈ s.1.db.versions, row.contentId ≠ E.ids s.1.idCount := by
        intro row hmem heq
        have hexists := hf.version row hmem
        rw [heq, hnone] at hexists
        cases hexists
      have hcopied := copyContent_bytes (C := C) (k := k) hfill hcounted hunfiled
      exact hcopied
    by_cases hleaf : info.type = .container
    · simp only [if_pos hleaf]
    · simp only [if_neg hleaf, hbytes hleaf]
  · intro n row hn
    refine ⟨hkept n row hn, (hspares n (by rw [hn]; rfl)).shown? hn (hkept n row hn)⟩

/-! ### The loop -/

/-- A row of the walk, the node its copy was placed under, and the copy. -/
structure CopiedRow where
  row : SubtreeRow
  parent : NodeId
  node : NodeId
  deriving DecidableEq, Repr

def CopiedRow.placement (p : Parent) (x : CopiedRow) : NodeId × NodeId × String :=
  (x.parent, x.node, p.nameFor x.row)

/-- What the loop of `copy` stands on: the copies made so far are younger and younger nodes,
each under the copy of its parent's row and shown like its source; what was there stays. -/
structure Cloning (C : Crypto) (k : Cipher) (E : Env) (p : Parent) (db : Db)
    (made : List CopiedRow) (t : Tx × IdMap NodeId) :
    Prop where
  ids : t.2 = (made.map (fun x => (x.row.nodeId, x.node))).reverse
  minted : ∀ x ∈ made, ∃ i < t.1.idCount, x.node = E.ids i
  ordered : made.Pairwise (fun x y => x.node < y.node)
  fresh : ∀ x ∈ made, db.node? x.node = none
  hung : ∀ x ∈ made, (x.row.parentId = none ∧ x.parent = p.container) ∨
    ∃ q ∈ made, x.row.parentId = some q.row.nodeId ∧ x.parent = q.node
  placements : t.1.db.placements = db.placements ++ made.map (CopiedRow.placement p)
  stored : ∀ x ∈ made, (t.1.db.node? x.node).isSome
  shown : ∀ x ∈ made, t.1.db.shown? C k x.node = db.shown? C k x.row.nodeId
  kept : ∀ n row, db.node? n = some row → t.1.db.node? n = some row ∧ t.1.db.shown? C k n =
    db.shown? C k n

theorem Cloning.start (tx : Tx) : Cloning C k E p tx.db [] (tx, []) where
  ids := rfl
  minted _ hx := absurd hx List.not_mem_nil
  ordered := List.Pairwise.nil
  fresh _ hx := absurd hx List.not_mem_nil
  hung _ hx := absurd hx List.not_mem_nil
  placements := (List.append_nil _).symm
  stored _ hx := absurd hx List.not_mem_nil
  shown _ hx := absurd hx List.not_mem_nil
  kept _ _ hn := ⟨hn, rfl⟩

/-- The parent a round picks is the copy of a row with the parent's node. -/
theorem Cloning.parent {made : List CopiedRow} {s : Tx × IdMap NodeId} {parent : NodeId}
    (h : Cloning C k E p db made s) (hparent : copyParent p s.2 r = .ok parent) :
    (r.parentId = none ∧ parent = p.container) ∨
      ∃ q ∈ made, r.parentId = some q.row.nodeId ∧ parent = q.node := by
  rw [copyParent] at hparent
  split at hparent
  next hnone => exact Or.inl ⟨hnone, (Except.ok.inj hparent).symm⟩
  next old hsome =>
    simp only [IdMap.find, orRaise_eq_ok, Option.map_eq_some_iff] at hparent
    obtain ⟨pair, hfind, rfl⟩ := hparent
    have hmem := List.mem_of_find?_eq_some hfind
    have hkey : pair.1 = old := by simpa using List.find?_some hfind
    rw [h.ids, List.mem_reverse, List.mem_map] at hmem
    obtain ⟨q, hq, rfl⟩ := hmem
    exact Or.inr ⟨q, hq, hsome.trans (congrArg some hkey.symm), rfl⟩

theorem Cloning.next {made : List CopiedRow} {s t : Tx × IdMap NodeId} {parent : NodeId}
    (h : Cloning C k E p db made s) (hext : ∃ added, s.1.db.identities = db.identities ++ added)
    (hr : (db.node? r.nodeId).isSome) (hround : Cloned C k E p r parent s t) :
    Cloning C k E p db (made ++ [⟨r, parent, E.ids s.1.idCount⟩]) t := by
  obtain ⟨row, hrow⟩ := Option.isSome_iff_exists.mp hr
  have hshown : t.1.db.shown? C k (E.ids s.1.idCount) = db.shown? C k r.nodeId :=
    hround.shown.trans (h.kept r.nodeId row hrow).2
  have hlast : ∀ {Q : CopiedRow → Prop}, (∀ x ∈ made, Q x) → Q ⟨r, parent, E.ids s.1.idCount⟩ →
      ∀ x ∈ made ++ [⟨r, parent, E.ids s.1.idCount⟩], Q x := by
    intro Q hold hnew x hx
    rcases List.mem_append.mp hx with hx | hx
    · exact hold x hx
    · rw [List.mem_singleton.mp hx]
      exact hnew
  constructor
  · rw [hround.ids, h.ids, List.map_append, List.reverse_append]
    rfl
  · refine hlast ?_ ⟨s.1.idCount, hround.minted, rfl⟩
    intro x hx
    obtain ⟨i, hi, heq⟩ := h.minted x hx
    exact ⟨i, hi.trans hround.minted, heq⟩
  · rw [List.pairwise_append]
    refine ⟨h.ordered, List.pairwise_singleton _ _, ?_⟩
    intro x hx y hy
    obtain ⟨i, hi, heq⟩ := h.minted x hx
    rw [List.mem_singleton.mp hy, heq]
    exact E.ids_strictMono hi
  · refine hlast h.fresh ?_
    by_contra hsome
    have hpersist := node?_isSome_persists hext (Option.isSome_iff_ne_none.mpr hsome)
    rw [hround.fresh] at hpersist
    cases hpersist
  · refine hlast ?_ ?_
    · intro x hx
      rcases h.hung x hx with hroot | ⟨q, hq, hunder⟩
      · exact Or.inl hroot
      · exact Or.inr ⟨q, List.mem_append_left _ hq, hunder⟩
    · rcases h.parent hround.hung with hroot | ⟨q, hq, hunder⟩
      · exact Or.inl hroot
      · exact Or.inr ⟨q, List.mem_append_left _ hq, hunder⟩
  · rw [hround.placements, h.placements, List.map_append, List.append_assoc]
    rfl
  · refine hlast ?_ ?_
    · intro x hx
      obtain ⟨row', hrow'⟩ := Option.isSome_iff_exists.mp (h.stored x hx)
      rw [(hround.kept x.node row' hrow').1]
      rfl
    · rw [← Option.isSome_map, ← Db.shown?, hshown, Db.shown?, Option.isSome_map]
      exact hr
  · refine hlast ?_ hshown
    intro x hx
    obtain ⟨row', hrow'⟩ := Option.isSome_iff_exists.mp (h.stored x hx)
    exact (hround.kept x.node row' hrow').2.trans (h.shown x hx)
  · intro n row' hn
    obtain ⟨hstays, hlooks⟩ := h.kept n row' hn
    obtain ⟨hstays', hlooks'⟩ := hround.kept n row' hstays
    exact ⟨hstays', hlooks'.trans hlooks⟩

theorem enumerateSubtree_exists {a : NodeId} (hs : db.Sound) (h : r ∈ db.enumerateSubtree a) :
    (db.node? r.nodeId).isSome := by
  rw [Db.enumerateSubtree] at h
  split at h
  · cases h
  next row hrow =>
    obtain ⟨d, -, hlevel⟩ := Db.mem_levelsFrom_iff.mp h
    cases d with
    | zero =>
      rw [List.mem_singleton.mp hlevel, hrow]
      rfl
    | succ d =>
      obtain ⟨q, -, hchild⟩ := Db.mem_levelAt_succ.mp hlevel
      obtain ⟨e, he, -, rfl⟩ := Db.mem_childRows.mp hchild
      exact hs.linked.child e (Db.mem_activeEdges.mp he).1

/-- `copy` makes one node for each row of the walk, in the order of the walk. -/
theorem copy_clones {k' : Cipher} (hs : tx.db.Sound) (hf : tx.db.Filed) (hc : tx.db.Counted)
    (hpool : tx.db.Pooled) (h : copy E k' tx mount src dst = .ok (tx', n)) :
    ∃ ctx found p made, requireMount E k' tx.db mount true = .ok ctx ∧
      resolve tx.db ctx.mountPoint src = .ok found ∧
      resolveParent tx.db ctx.mountPoint dst = .ok p ∧
        made.map CopiedRow.row = tx.db.enumerateSubtree found.node ∧
      ∃ ids, Cloning C k E p tx.db made (tx', ids) := by
  simp only [copy, bind_eq_ok, pure_eq_ok, Prod.mk.injEq] at h
  obtain ⟨ctx, hctx, found, hfound, p, hp, u, -, t, hfold, root, -, rfl, -⟩ := h
  have hhost : (License.standard tx.db ctx.mountPoint).host p.container :=
    Or.inl (resolveParent_below hp)
  have hexists := resolveParent_exists (anchor_exists hs.linked.anchor hctx) hp
  have hall := @foldlM_along _ _ _ (copyRow E ctx p)
    (fun done t => (Strides (.standard tx.db ctx.mountPoint) E.now tx.db t.1.db ∧
      Hosts (.standard tx.db ctx.mountPoint) t.1 (p.container :: t.2.map Prod.snd)) ∧
      t.1.db.Counted ∧
      ∃ made, made.map CopiedRow.row = done ∧ Cloning C k E p tx.db made t) [] _ _ _
    (by
      rintro done r s t hr ⟨⟨hstrides, hhosts⟩, hcounted, made, rfl, hmade⟩ hrow
      have hnext := copyRow_strides (fun n hn => Or.inr hn) hstrides hhosts hrow
      obtain ⟨parent, hround⟩ :=
        copyRow_cloned (C := C) (k := k) hrow (hstrides.filed hf) hcounted (hstrides.pooled hpool)
      refine ⟨hnext, copyRow_counted hrow hcounted, _, ?_,
      hmade.next hstrides.identities (enumerateSubtree_exists hs hr) hround⟩
      rw [List.map_append]
      rfl)
    hfold ⟨⟨ReflTransGen.refl, by simp [Hosts, hhost, hexists]⟩, hc, [], rfl, Cloning.start tx⟩
  obtain ⟨-, -, made, hrows, hmade⟩ := hall
  exact ⟨ctx, found, p, made, hctx, hfound, hp, hrows, t.2, hmade⟩

end Aloelite
